import Concentric.Number.Digits

/-! JSON texts: characters between double quotes. Any character may be escaped by its code in
units of sixteen bits, and the quote, the backslash and the controls have to be. Reading takes the
short escapes and pairs of surrogates too. -/

namespace Concentric.Json

inductive Cause
  | byteOrderMark
  | value
  | extraData
  | propertyName
  | colon
  | comma
  | unterminated
  | control
  | escape
  | unicodeEscape
  deriving DecidableEq, Repr

def Cause.message : Cause → String
  | byteOrderMark => "Unexpected UTF-8 BOM (decode using utf-8-sig)"
  | value => "Expecting value"
  | extraData => "Extra data"
  | propertyName => "Expecting property name enclosed in double quotes"
  | colon => "Expecting ':' delimiter"
  | comma => "Expecting ',' delimiter"
  | unterminated => "Unterminated string starting at"
  | control => "Invalid control character at"
  | escape => "Invalid \\escape"
  | unicodeEscape => "Invalid \\uXXXX escape"

/-- A fault, with the number of characters from its place to the end of the document. -/
structure Fault where
  cause : Cause
  remaining : Nat
  deriving DecidableEq, Repr

/-- A fault of a text after its opening quote; a text without an end is at fault from its quote
on. -/
def Fault.after (f : Fault) (text : List Char) : Fault :=
  if f.cause = .unterminated then ⟨.unterminated, text.length + 1⟩ else f

/-! ## Reading -/

def hexDigit? (c : Char) : Option Nat :=
  if '0' ≤ c ∧ c ≤ '9' then some (c.toNat - '0'.toNat)
  else if 'a' ≤ c ∧ c ≤ 'f' then some (c.toNat - 'a'.toNat + 10)
  else if 'A' ≤ c ∧ c ≤ 'F' then some (c.toNat - 'A'.toNat + 10)
  else none

/-- The unit that four hexadecimal digits in front stand for, and the rest. A character has to
follow them, since a text ends with a quote. -/
def unit? : List Char → Option (Nat × List Char)
  | a :: b :: c :: d :: e :: rest =>
    match hexDigit? a, hexDigit? b, hexDigit? c, hexDigit? d with
    | some a, some b, some c, some d => some (((a * 16 + b) * 16 + c) * 16 + d, e :: rest)
    | _, _, _, _ => none
  | _ => none

def isHigh (u : Nat) : Bool := 0xD800 ≤ u && u < 0xDC00

def isLow (u : Nat) : Bool := 0xDC00 ≤ u && u < 0xE000

/-- The character of one unit; a surrogate on its own is no character and is replaced. -/
def unitChar (u : Nat) : Char :=
  if isHigh u || isLow u then '\uFFFD' else Char.ofNat u

def pairChar (u v : Nat) : Char := Char.ofNat (0x10000 + (u - 0xD800) * 1024 + (v - 0xDC00))

/-- The character of a unit and of a low surrogate that may follow it, and the rest. -/
def withLow (u : Nat) (rest : List Char) : Except Fault (Char × List Char) :=
  match rest with
  | '\\' :: 'u' :: low =>
    if !isHigh u || (low.drop 4).isEmpty then .ok (unitChar u, rest)
    else match unit? low with
      | none => .error ⟨.unicodeEscape, low.length + 1⟩
      | some (v, after) =>
        if isLow v then .ok (pairChar u v, after) else .ok (unitChar u, rest)
  | _ => .ok (unitChar u, rest)

def codeEscape (cs : List Char) : Except Fault (Char × List Char) :=
  match unit? cs with
  | none => .error ⟨.unicodeEscape, cs.length + 1⟩
  | some (u, rest) => withLow u rest

def shortEscapes : List (Char × Char) :=
  [('"', '"'), ('\\', '\\'), ('/', '/'), ('b', '\x08'), ('f', '\x0c'), ('n', '\n'), ('r', '\r'),
    ('t', '\t')]

def escape : List Char → Except Fault (Char × List Char)
  | [] => .error ⟨.unterminated, 0⟩
  | c :: rest =>
    if c = 'u' then codeEscape rest
    else match shortEscapes.lookup c with
      | some d => .ok (d, rest)
      | none => .error ⟨.escape, rest.length + 2⟩

theorem unit?_shortens {cs rest : List Char} {u : Nat} (h : unit? cs = some (u, rest)) :
    rest.length < cs.length := by
  unfold unit? at h
  repeat' split at h
  all_goals first
    | contradiction
    | (simp only [Option.some.injEq, Prod.mk.injEq] at h
       obtain ⟨_, rfl⟩ := h
       simp only [List.length_cons]
       omega)

theorem withLow_length_le {u : Nat} {cs rest : List Char} {c : Char}
    (h : withLow u cs = .ok (c, rest)) : rest.length ≤ cs.length := by
  unfold withLow at h
  split at h
  · next low =>
    split at h
    · cases h; exact Nat.le_refl _
    · split at h
      · contradiction
      · next v after hv =>
        have := unit?_shortens hv
        split at h
        · simp only [Except.ok.injEq, Prod.mk.injEq] at h
          obtain ⟨_, rfl⟩ := h
          simp only [List.length_cons]
          omega
        · cases h; exact Nat.le_refl _
  · cases h; exact Nat.le_refl _

theorem codeEscape_shortens {cs rest : List Char} {c : Char}
    (h : codeEscape cs = .ok (c, rest)) : rest.length < cs.length := by
  unfold codeEscape at h
  split at h
  · contradiction
  · next u after hu =>
    exact Nat.lt_of_le_of_lt (withLow_length_le h) (unit?_shortens hu)

theorem escape_shortens {cs rest : List Char} {c : Char}
    (h : escape cs = .ok (c, rest)) : rest.length < cs.length := by
  cases cs with
  | nil => simp [escape] at h
  | cons d tail =>
    simp only [escape] at h
    split at h
    · have := codeEscape_shortens h
      simp only [List.length_cons]
      omega
    · split at h
      · simp only [Except.ok.injEq, Prod.mk.injEq] at h
        obtain ⟨_, rfl⟩ := h
        simp
      · contradiction

def characters (cs : List Char) : Except Fault (List Char × List Char) :=
  match cs with
  | [] => .error ⟨.unterminated, 0⟩
  | c :: rest =>
    if c = '"' then .ok ([], rest)
    else if c = '\\' then
      match shorter : escape rest with
      | .error f => .error f
      | .ok (d, after) =>
        have := escape_shortens shorter
        match characters after with
        | .error f => .error f
        | .ok p => .ok (d :: p.1, p.2)
    else if c.toNat < 0x20 then .error ⟨.control, rest.length + 1⟩
    else match characters rest with
      | .error f => .error f
      | .ok p => .ok (c :: p.1, p.2)
termination_by cs.length

theorem characters_shortens {cs : List Char} {p : List Char × List Char}
    (h : characters cs = .ok p) : p.2.length < cs.length := by
  fun_induction characters cs generalizing p with
  | case2 rest => cases h; simp
  | case5 _ _ _ _ after_lt _ _ _ ih =>
    cases h
    have := ih (by assumption)
    simp only [List.length_cons]
    omega
  | case8 c rest _ _ _ q _ ih =>
    cases h
    have := ih (by assumption)
    simp only [List.length_cons]
    omega
  | _ => contradiction

/-! ## Writing -/

def hex4 (n : Nat) : List Char :=
  [n / 4096 % 16, n / 256 % 16, n / 16 % 16, n % 16].map Nat.digitChar

/-- A code point in one unit, or in a pair of surrogates. -/
def writeCode (n : Nat) : List Char :=
  if n < 0x10000 then '\\' :: 'u' :: hex4 n
  else '\\' :: 'u' :: (hex4 (0xD800 + (n - 0x10000) / 1024) ++
    '\\' :: 'u' :: hex4 (0xDC00 + (n - 0x10000) % 1024))

/-- A character in a text: all but the printable ones of ASCII are escaped. -/
def writeChar (c : Char) : List Char :=
  if c = '"' ∨ c = '\\' then ['\\', c]
  else if c = '\n' then ['\\', 'n']
  else if c = '\r' then ['\\', 'r']
  else if c = '\t' then ['\\', 't']
  else if c = '\x08' then ['\\', 'b']
  else if c = '\x0c' then ['\\', 'f']
  else if 0x20 ≤ c.toNat ∧ c.toNat < 0x7F then [c]
  else writeCode c.toNat

def writeText (cs : List Char) : List Char :=
  '"' :: (cs.flatMap writeChar ++ ['"'])

end Concentric.Json
