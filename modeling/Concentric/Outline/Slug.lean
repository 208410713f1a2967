import Concentric.Number.Digits
import Concentric.Unicode.Blank
import Concentric.Unicode.LowerCase
import Concentric.Unicode.Word

/-! Slugs: the names by which headings are addressed. A slug is the text of its heading in lower
case, with words joined by hyphens. Where several headings have one slug, all but the first are
numbered. -/

namespace Concentric.Slug

/-- Word characters, hyphens and spaces make up a slug. -/
def keeps (c : Char) : Bool := Unicode.isWord c || c == '-' || c == ' '

def ofText (s : String) : String :=
  let cs := (Unicode.lower (Unicode.trim s.toList)).filter keeps
  if cs = [] then "section" else String.ofList (cs.map fun c => if c = ' ' then '-' else c)

def numbered (slug : String) (n : Nat) : String :=
  if n = 0 then slug else slug ++ "-" ++ Digits.text n

/-- Numbers slugs by how often each was met before; `seen` has those that were. -/
def number (seen : List String) : List String → List String
  | [] => []
  | s :: rest => numbered s (seen.count s) :: number (s :: seen) rest

@[simp] theorem length_number (seen slugs : List String) :
    (number seen slugs).length = slugs.length := by
  induction slugs generalizing seen with
  | nil => rfl
  | cons s rest ih => simp [number, ih]

/-- A slug as it is looked up. -/
def sought (s : String) : String :=
  String.ofList (Unicode.lower (Unicode.trim s.toList))

end Concentric.Slug
