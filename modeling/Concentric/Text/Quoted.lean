import Concentric.Unicode.Graphic

/-! Quoted texts. The quote is the single one, unless the text holds single quotes and no double
ones. The quote and the backslash are escaped, so are tab, line feed and carriage return, and a
character without a shape is written as its code point. -/

namespace Concentric.Quoted

/-- The low `n` hexadecimal digits of a number, the most significant first. -/
def hex : Nat → Nat → List Char
  | 0, _ => []
  | n + 1, k => hex n (k / 16) ++ [Nat.digitChar (k % 16)]

/-- A code point in the shortest of the three escapes that holds it. -/
def codePoint (n : Nat) : List Char :=
  if n < 0x100 then '\\' :: 'x' :: hex 2 n
  else if n < 0x10000 then '\\' :: 'u' :: hex 4 n
  else '\\' :: 'U' :: hex 8 n

def quoteFor (cs : List Char) : Char :=
  if cs.contains '\'' && !cs.contains '"' then '"' else '\''

/-- One character inside quotes, where `shown` tells which characters stand for themselves. -/
def escape (quote : Char) (shown : Char → Bool) (c : Char) : List Char :=
  if c = quote ∨ c = '\\' then ['\\', c]
  else if c = '\t' then ['\\', 't']
  else if c = '\n' then ['\\', 'n']
  else if c = '\r' then ['\\', 'r']
  else if shown c then [c]
  else codePoint c.toNat

def enclose (shown : Char → Bool) (cs : List Char) : List Char :=
  let quote := quoteFor cs
  quote :: (cs.flatMap (escape quote shown) ++ [quote])

def text (s : String) : String :=
  String.ofList (enclose Unicode.isGraphic s.toList)

def octets (bs : List UInt8) : String :=
  String.ofList ('b' :: enclose (fun c => 32 ≤ c.toNat && c.toNat < 127)
    (bs.map fun b => Char.ofNat b.toNat))

end Concentric.Quoted
