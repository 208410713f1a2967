import Concentric.Failure

/-! Reports as plain data: a map of what a report tells. The details of a report are a map, or a
sequence of pairs that makes one: of two pairs with one key the later counts, in the place of the
earlier. -/

namespace Concentric

namespace Value

/-- Adds an entry, in the place of one with the same key, which keeps its key. -/
def putPair (key value : Value) : List (Value × Value) → List (Value × Value)
  | [] => [(key, value)]
  | (k, v) :: ps => if k.sameKey key then (k, value) :: ps else (k, v) :: putPair key value ps

/-- The key and the value that a part of a sequence stands for: it has to have two parts, the first
of which can be looked up. -/
def pairOf (index : Nat) (part : Value) : Except Failure (Value × Value) :=
  match part.parts? with
  | none => .error (.mismatch .use)
  | some [key, value] => match key.unhashable? with
    | none => .ok (key, value)
    | some kind => .error (.mismatch (.lookup kind))
  | some ps => .error (.refused (.pairLength index ps.length))

def pairsOf (parts : List Value) : Except Failure (List (Value × Value)) :=
  parts.zipIdx.foldlM (fun ps (part, i) => do
    let (key, value) ← pairOf i part
    return putPair key value ps) []

def putText (key : String) (value : Value) : List (String × Value) → List (String × Value)
  | [] => [(key, value)]
  | (k, v) :: es => if k = key then (k, value) :: es else (k, v) :: putText key value es

/-- The entries of a map, or of the map that a sequence of pairs makes, by the texts of the keys. -/
def entriesOf : Value → Except Failure (List (String × Value))
  | map es => .ok es
  | v => match v.parts? with
    | none => .error (.mismatch .use)
    | some parts => do
      let ps ← pairsOf parts
      return ps.foldl (fun es p => putText p.1.display p.2 es) []

end Value

namespace Report

def detailEntry (r : Report) : Except Failure (List (String × Value)) :=
  if r.details.truthy then r.details.entriesOf.map fun es => [("details", .map es)] else .ok []

/-- The report as a map; empty details and an empty hint are left out. -/
def toMap (r : Report) : Except Failure Value :=
  r.detailEntry.map fun details => .map
    ([("error", r.code), ("message", r.message)] ++ details ++
      (if r.suggestion.truthy then [("suggestion", r.suggestion)] else []) ++
      r.kind.extras.filterMap fun name => (r.extra? name).map fun v => (name, v))

end Report

end Concentric
