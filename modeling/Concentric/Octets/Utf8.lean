/-! Texts as octets in UTF-8, and back. A character takes one to four octets. Reading is strict:
an octet that cannot stand where it stands is a fault, and the fault names the longest stretch of
octets that begins a character but does not complete one. -/

namespace Concentric.Utf8

def encodeChar (c : Char) : List UInt8 :=
  let n := c.toNat
  if n < 0x80 then [n.toUInt8]
  else if n < 0x800 then [(0xC0 + n / 64).toUInt8, (0x80 + n % 64).toUInt8]
  else if n < 0x10000 then
    [(0xE0 + n / 4096).toUInt8, (0x80 + n / 64 % 64).toUInt8, (0x80 + n % 64).toUInt8]
  else
    [(0xF0 + n / 262144).toUInt8, (0x80 + n / 4096 % 64).toUInt8, (0x80 + n / 64 % 64).toUInt8,
      (0x80 + n % 64).toUInt8]

def encode (cs : List Char) : List UInt8 := cs.flatMap encodeChar

/-- Why octets are no UTF-8, and how many of them the fault covers. -/
inductive Fault
  | start
  | continuation (covered : Nat)
  | unfinished (covered : Nat)
  deriving DecidableEq, Repr

namespace Fault

def covered : Fault → Nat
  | start => 1
  | continuation n => n
  | unfinished n => n

def reason : Fault → String
  | start => "invalid start byte"
  | continuation _ => "invalid continuation byte"
  | unfinished _ => "unexpected end of data"

end Fault

def isContinuation (b : UInt8) : Bool := 0x80 ≤ b && b < 0xC0

/-- The second octet may stand after the first: no overlong form, no surrogate and nothing
beyond the last code point begins so. -/
def mayFollow (lead second : UInt8) : Bool :=
  isContinuation second &&
    (if lead = 0xE0 then 0xA0 ≤ second
    else if lead = 0xED then second < 0xA0
    else if lead = 0xF0 then 0x90 ≤ second
    else if lead = 0xF4 then second < 0x90
    else true)

def payload (b : UInt8) : Nat := b.toNat % 64

def next : List UInt8 → Except Fault (Char × List UInt8)
  | [] => .error (.unfinished 0)
  | a :: rest =>
    if a < 0x80 then .ok (Char.ofNat a.toNat, rest)
    else if a < 0xC2 then .error .start
    else if a < 0xE0 then
      match rest with
      | [] => .error (.unfinished 1)
      | b :: rest =>
        if !isContinuation b then .error (.continuation 1)
        else .ok (Char.ofNat (a.toNat % 32 * 64 + payload b), rest)
    else if a < 0xF0 then
      match rest with
      | [] => .error (.unfinished 1)
      | [b] => .error (if mayFollow a b then .unfinished 2 else .continuation 1)
      | b :: c :: rest =>
        if !mayFollow a b then .error (.continuation 1)
        else if !isContinuation c then .error (.continuation 2)
        else .ok (Char.ofNat (a.toNat % 16 * 4096 + payload b * 64 + payload c), rest)
    else if a < 0xF5 then
      match rest with
      | [] => .error (.unfinished 1)
      | [b] => .error (if mayFollow a b then .unfinished 2 else .continuation 1)
      | [b, c] => .error
          (if !mayFollow a b then .continuation 1
          else if isContinuation c then .unfinished 3 else .continuation 2)
      | b :: c :: d :: rest =>
        if !mayFollow a b then .error (.continuation 1)
        else if !isContinuation c then .error (.continuation 2)
        else if !isContinuation d then .error (.continuation 3)
        else .ok (Char.ofNat
          (a.toNat % 8 * 262144 + payload b * 4096 + payload c * 64 + payload d), rest)
    else .error .start

theorem next_shortens {bs rest : List UInt8} {c : Char} (h : next bs = .ok (c, rest)) :
    rest.length < bs.length := by
  unfold next at h
  repeat' split at h
  all_goals first
    | contradiction
    | (injection h with h; injection h with _ h; subst h; simp; try omega)

/-- The text of the octets, or the place of the first fault and the fault. -/
def decodeFrom (place : Nat) (bs : List UInt8) : Except (Nat × Fault) (List Char) :=
  match bs with
  | [] => .ok []
  | b :: bs =>
    match shorter : next (b :: bs) with
    | .error f => .error (place, f)
    | .ok (c, rest) =>
      have : rest.length < (b :: bs).length := next_shortens shorter
      (decodeFrom (place + (encodeChar c).length) rest).map (c :: ·)
termination_by bs.length
decreasing_by exact this

/-- The text of the octets, or the place of the first fault and the fault. -/
def decode (bs : List UInt8) : Except (Nat × Fault) (List Char) := decodeFrom 0 bs

def octets (s : String) : List UInt8 := encode s.toList

end Concentric.Utf8
