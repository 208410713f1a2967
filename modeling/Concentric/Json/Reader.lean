import Concentric.Json.Text
import Concentric.Failure

/-! Reading JSON documents. The containers that are open are kept in a stack of frames, and every
step takes at least one character off the document. A fault carries its place; numbers that are
not finite are read by name, and of two entries with one key the later counts. -/

namespace Concentric.Json

def isGap (c : Char) : Bool := c == ' ' || c == '\t' || c == '\n' || c == '\r'

def skip (cs : List Char) : List Char := cs.dropWhile isGap

theorem skip_length_le (cs : List Char) : (skip cs).length ≤ cs.length :=
  (List.dropWhile_sublist isGap).length_le

inductive Stop
  | fault (f : Fault)
  | tooDeep
  | literalTooLong (digits : Nat)
  deriving DecidableEq, Repr

/-- How many containers may be open at once. -/
def depthLimit : Nat := 980

/-! ## Numbers and names -/

def names : List (List Char × Value) :=
  [("null".toList, .nothing), ("true".toList, .truth true), ("false".toList, .truth false),
    ("NaN".toList, .real .nan), ("Infinity".toList, .real (.infinite false)),
    ("-Infinity".toList, .real (.infinite true))]

/-- The whole part of a number: a zero alone, or digits of which the first is no zero. -/
def wholePart? : List Char → Option (List Nat × List Char)
  | '0' :: rest => some ([0], rest)
  | cs => match Digits.leading cs with
    | ([], _) => none
    | r => some r

def fraction (cs : List Char) : List Nat × List Char :=
  match cs with
  | '.' :: rest => match Digits.leading rest with
    | ([], _) => ([], cs)
    | r => r
  | _ => ([], cs)

/-- A number without its sign, and the rest. With neither fraction nor exponent it is whole. -/
def magnitude? (negative : Bool) (cs : List Char) : Option (Except Stop Value × List Char) :=
  (wholePart? cs).map fun (whole, rest) =>
    let (decimals, rest') := fraction rest
    match decimals, Literal.exponent? rest' with
    | [], none =>
      if Literal.digitLimit < whole.length then (.error (.literalTooLong whole.length), rest)
      else
        let n : Int := Digits.value whole
        (.ok (.whole (if negative then -n else n)), rest)
    | _, none => (.ok (.real (Literal.real negative whole decimals 0)), rest')
    | _, some (e, after) => (.ok (.real (Literal.real negative whole decimals e)), after)

def number? : List Char → Option (Except Stop Value × List Char)
  | '-' :: rest => magnitude? true rest
  | cs => magnitude? false cs

def atom? (cs : List Char) : Option (Except Stop Value × List Char) :=
  match names.find? fun n => n.1.isPrefixOf cs with
  | some n => some (.ok n.2, cs.drop n.1.length)
  | none => number? cs

theorem leading_length (cs : List Char) :
    (Digits.leading cs).1.length + (Digits.leading cs).2.length = cs.length := by
  induction cs with
  | nil => rfl
  | cons c rest ih =>
    simp only [Digits.leading]
    split
    · simp only [List.length_cons]
      omega
    · simp

theorem wholePart?_shortens {cs rest : List Char} {ds : List Nat}
    (h : wholePart? cs = some (ds, rest)) : rest.length < cs.length := by
  unfold wholePart? at h
  split at h
  · simp only [Option.some.injEq, Prod.mk.injEq] at h
    obtain ⟨_, rfl⟩ := h
    simp
  · have hl := leading_length cs
    split at h
    · contradiction
    · next r hr =>
      simp only [Option.some.injEq] at h
      rw [h] at hl hr
      cases ds with
      | nil => exact (hr rest rfl).elim
      | cons d ds =>
        simp only [List.length_cons] at hl
        omega

theorem fraction_length_le (cs : List Char) : (fraction cs).2.length ≤ cs.length := by
  unfold fraction
  split
  · next rest =>
    have := leading_length rest
    split
    · simp
    · simp only [List.length_cons]
      omega
  · simp

theorem exponent?_length_le {cs after : List Char} {e : Int}
    (h : Literal.exponent? cs = some (e, after)) : after.length ≤ cs.length := by
  unfold Literal.exponent? at h
  split at h
  · next c rest =>
    split at h
    · have hs : (Literal.sign rest).2.length ≤ rest.length := by
        unfold Literal.sign
        split <;> simp
      have hl := leading_length (Literal.sign rest).2
      simp only at h
      split at h
      · contradiction
      · next ds rest' _ hd =>
        simp only [Option.some.injEq, Prod.mk.injEq] at h
        obtain ⟨_, rfl⟩ := h
        simp only [hd] at hl
        simp only [List.length_cons]
        omega
    · contradiction
  · contradiction

theorem magnitude?_shortens {negative : Bool} {cs rest : List Char} {v : Except Stop Value}
    (h : magnitude? negative cs = some (v, rest)) : rest.length < cs.length := by
  simp only [magnitude?, Option.map_eq_some_iff] at h
  obtain ⟨⟨whole, r⟩, hw, h⟩ := h
  have h0 := wholePart?_shortens hw
  have h1 := fraction_length_le r
  simp only at h
  split at h
  · split at h <;>
    · simp only [Prod.mk.injEq] at h
      obtain ⟨_, rfl⟩ := h
      exact h0
  · simp only [Prod.mk.injEq] at h
    obtain ⟨_, rfl⟩ := h
    omega
  · next he =>
    have h2 := exponent?_length_le he
    simp only [Prod.mk.injEq] at h
    obtain ⟨_, rfl⟩ := h
    omega

theorem atom?_shortens {cs rest : List Char} {v : Except Stop Value}
    (h : atom? cs = some (v, rest)) : rest.length < cs.length := by
  unfold atom? at h
  split at h
  · next n hn =>
    simp only [Option.some.injEq, Prod.mk.injEq] at h
    obtain ⟨_, rfl⟩ := h
    have hmem := List.mem_of_find?_eq_some hn
    have hp := List.find?_some hn
    have hlen : 0 < n.1.length := by
      simp only [names, List.mem_cons, List.not_mem_nil, or_false] at hmem
      rcases hmem with rfl | rfl | rfl | rfl | rfl | rfl <;> decide
    have := (List.isPrefixOf_iff_prefix.1 hp).length_le
    simp only [List.length_drop]
    omega
  · unfold number? at h
    split at h
    · have := magnitude?_shortens h
      simp only [List.length_cons]
      omega
    · exact magnitude?_shortens h

/-! ## Documents -/

/-- A container that is open: what it holds so far, the latest first for a list, and for a map
the key whose value comes next. -/
inductive Frame
  | list (done : List Value)
  | map (done : List (String × Value)) (key : String)

/-- What comes next: a value, the key of another entry, or what follows a value. -/
inductive Mode
  | value
  | key (done : List (String × Value))
  | after (v : Value)

/-- Adds an entry, in the place of one that has its key. -/
def put (key : String) (v : Value) : List (String × Value) → List (String × Value)
  | [] => [(key, v)]
  | (k, w) :: es => if k = key then (key, v) :: es else (k, w) :: put key v es

/-- Reads on, from a mode and with the open containers, the innermost first. -/
def run (mode : Mode) (stack : List Frame) (cs : List Char) : Except Stop Value :=
  match mode with
  | .value =>
    match cs with
    | '"' :: rest =>
      match h : characters rest with
      | .error f => .error (.fault (f.after rest))
      | .ok p =>
        have := characters_shortens h
        run (.after (.text (String.ofList p.1))) stack p.2
    | '[' :: rest =>
      if depthLimit ≤ stack.length then .error .tooDeep
      else match h : skip rest with
        | ']' :: after =>
          have : after.length < rest.length := by
            have := skip_length_le rest
            simp only [h, List.length_cons] at this
            omega
          run (.after (.list [])) stack after
        | body =>
          have : body.length ≤ rest.length := by
            rw [← h]
            exact skip_length_le rest
          run .value (.list [] :: stack) body
    | '\x7b' :: rest =>
      if depthLimit ≤ stack.length then .error .tooDeep
      else match h : skip rest with
        | '\x7d' :: after =>
          have : after.length < rest.length := by
            have := skip_length_le rest
            simp only [h, List.length_cons] at this
            omega
          run (.after (.map [])) stack after
        | body =>
          have : body.length ≤ rest.length := by
            rw [← h]
            exact skip_length_le rest
          run (.key []) stack body
    | cs =>
      match h : atom? cs with
      | none => .error (.fault ⟨.value, cs.length⟩)
      | some (.error e, _) => .error e
      | some (.ok v, after) =>
        have := atom?_shortens h
        run (.after v) stack after
  | .key done =>
    match cs with
    | '"' :: rest =>
      match h : characters rest with
      | .error f => .error (.fault (f.after rest))
      | .ok p =>
        have h1 := characters_shortens h
        match h2 : skip p.2 with
        | ':' :: after =>
          have : (skip after).length < rest.length := by
            have h3 := skip_length_le p.2
            have h4 := skip_length_le after
            simp only [h2, List.length_cons] at h3
            omega
          run .value (.map done (String.ofList p.1) :: stack) (skip after)
        | other => .error (.fault ⟨.colon, other.length⟩)
    | cs => .error (.fault ⟨.propertyName, cs.length⟩)
  | .after v =>
    match stack with
    | [] =>
      if skip cs = [] then .ok v else .error (.fault ⟨.extraData, (skip cs).length⟩)
    | .list done :: stack =>
      match h : skip cs with
      | ']' :: after =>
        have : after.length < cs.length := by
          have := skip_length_le cs
          simp only [h, List.length_cons] at this
          omega
        run (.after (.list (v :: done).reverse)) stack after
      | ',' :: after =>
        have : (skip after).length < cs.length := by
          have h1 := skip_length_le cs
          have h2 := skip_length_le after
          simp only [h, List.length_cons] at h1
          omega
        run .value (.list (v :: done) :: stack) (skip after)
      | other => .error (.fault ⟨.comma, other.length⟩)
    | .map done key :: stack =>
      match h : skip cs with
      | '\x7d' :: after =>
        have : after.length < cs.length := by
          have := skip_length_le cs
          simp only [h, List.length_cons] at this
          omega
        run (.after (.map (put key v done))) stack after
      | ',' :: after =>
        have : (skip after).length < cs.length := by
          have h1 := skip_length_le cs
          have h2 := skip_length_le after
          simp only [h, List.length_cons] at h1
          omega
        run (.key (put key v done)) stack (skip after)
      | other => .error (.fault ⟨.comma, other.length⟩)
termination_by cs.length

/-- The value of a document. A byte order mark in front is a fault. -/
def read (cs : List Char) : Except Stop Value :=
  match cs with
  | '\uFEFF' :: _ => .error (.fault ⟨.byteOrderMark, cs.length⟩)
  | _ => run .value [] (skip cs)

/-- A fault in words, with its line, its column and its place, the first two counted from one. -/
def Fault.message (f : Fault) (document : List Char) : String :=
  let place := document.length - f.remaining
  let before := document.take place
  let column := (before.reverse.takeWhile (· != '\n')).length + 1
  f.cause.message ++ ": line " ++ Digits.text (before.count '\n' + 1 : Nat) ++ " column " ++
    Digits.text column ++ " (char " ++ Digits.text place ++ ")"

end Concentric.Json
