import Concentric.Failure

/-! Block tokens: the structure of a document as a flat stream, each token with the lines that it
covers. A token covers the lines of its map if the map is a pair of whole numbers in order. -/

namespace Concentric

/-- The type of a token: a name, some value that is no name, or none at all. -/
inductive TokenType
  | named (name : String)
  | other (v : Value)
  | absent
  deriving Repr

namespace TokenType

def name? : TokenType → Option String
  | named s => some s
  | _ => none

def lists : List String := ["ordered_list_open", "list_item_open", "bullet_list_open"]

/-- What covers no lines of its own: ends, inline text, and headings, which the outline has. -/
def ignored : List String :=
  ["list_item_close", "paragraph_close", "bullet_list_close", "inline", "heading_close",
    "heading_open"]

def isList (t : TokenType) : Bool :=
  match t.name? with
  | some s => lists.contains s
  | none => false

def isBlock (t : TokenType) : Bool :=
  match t.name? with
  | some s => !ignored.contains s
  | none => true

/-- The type can be looked up among names. A list or a map cannot. -/
def isKey : TokenType → Bool
  | other v => v.unhashable?.isNone
  | _ => true

def get : TokenType → Except Failure TokenType
  | absent => .error .missingAttribute
  | t => .ok t

def display : TokenType → String
  | named s => s
  | other v => v.display
  | absent => ""

end TokenType

/-- Lines from `start` on, up to but without `stop`. -/
@[ext] structure LineRange where
  start : Int
  stop : Int
  start_le_stop : start ≤ stop
  deriving DecidableEq, Repr

namespace LineRange

def length (r : LineRange) : Int := r.stop - r.start

def has (r : LineRange) (line : Int) : Bool := decide (r.start ≤ line) && decide (line < r.stop)

end LineRange

structure Token where
  type : TokenType := .absent
  map : Value := .nothing
  level : Value := .whole 0
  tag : Value := .text ""
  markup : Value := .text ""
  content : Value := .text ""
  deriving Repr

namespace Token

/-- The two values of a map that is a pair of whole numbers in order. -/
def bounds? (t : Token) : Option (Value × Value) :=
  match t.map.parts? with
  | some [a, b] =>
    match a.numeral? >>= Numeral.whole?, b.numeral? >>= Numeral.whole? with
    | some s, some e => if s ≤ e then some (a, b) else none
    | _, _ => none
  | _ => none

def lines? (t : Token) : Option LineRange :=
  match t.map.parts? with
  | some [a, b] =>
    match a.numeral? >>= Numeral.whole?, b.numeral? >>= Numeral.whole? with
    | some s, some e => if h : s ≤ e then some ⟨s, e, h⟩ else none
    | _, _ => none
  | _ => none

def covers (line : Int) (t : Token) : Bool :=
  match t.lines? with
  | some r => r.has line
  | none => false

def isList (t : Token) : Bool := t.type.isList

def isBlock (t : Token) : Bool := t.type.isBlock

def extent (t : Token) : Int :=
  match t.lines? with
  | some r => r.length
  | none => 0

def encloses (line : Int) (t : Token) : Bool := t.covers line && t.isBlock

def keyed (t : Token) : Except Failure Token :=
  if t.type.isKey then .ok t else .error (.mismatch .use)

/-- The items whose tokens enclose a line, the longest first, and equally long ones in their
order. -/
def enclosing {α : Type} (token : α → Token) (line : Int) (xs : List α) : List α :=
  (xs.filter fun x => encloses line (token x)).mergeSort
    fun x y => decide ((token y).extent ≤ (token x).extent)

/-- The items whose tokens enclose a line, if the types of all that cover it can be looked up. -/
def around {α : Type} (token : α → Token) (line : Int) (xs : List α) :
    Except Failure (List α) :=
  if xs.all fun x => !(token x).covers line || (token x).type.isKey then
    .ok (enclosing token line xs)
  else .error (.mismatch .use)

theorem around_eq_ok {α : Type} {token : α → Token} {line : Int} {xs ys : List α}
    (h : around token line xs = .ok ys) : ys = enclosing token line xs := by
  unfold around at h
  split at h
  · cases h
    rfl
  · contradiction

theorem enclosing_perm {α : Type} (token : α → Token) (line : Int) (xs : List α) :
    (enclosing token line xs).Perm (xs.filter fun x => encloses line (token x)) :=
  List.mergeSort_perm _ _

theorem pairwise_enclosing {α : Type} (token : α → Token) (line : Int) (xs : List α) :
    (enclosing token line xs).Pairwise fun x y => (token y).extent ≤ (token x).extent := by
  have h : (enclosing token line xs).Pairwise
      fun x y => decide ((token y).extent ≤ (token x).extent) = true :=
    List.pairwise_mergeSort (fun x y z h h' => by simp only [decide_eq_true_eq] at *; omega)
      (fun x y => by simp only [Bool.or_eq_true, decide_eq_true_eq]; omega) _
  exact h.imp fun h => by simpa using h

end Token

end Concentric
