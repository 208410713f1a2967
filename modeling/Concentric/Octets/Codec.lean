import Concentric.Failure
import Concentric.Octets.Utf8

/-! Codecs: the names under which octets may be read as text, and how each reads them. All of them
are strict. Names are matched by their letters and digits, without regard to case and to what
stands between them. The locale knows more codecs than those here. -/

namespace Concentric

/-- What the surroundings say about codecs: the name of the preferred one, and how octets are read in
codecs that are not among those here, by their names. -/
structure Locale where
  preferred : String
  reader? : String → Option (List UInt8 → Except Undecodable (List Char)) := fun _ => none

inductive Codec
  | utf8
  | utf8Marked
  | utf16
  | utf16Little
  | utf16Big
  | utf32
  | utf32Little
  | utf32Big
  | latin1
  | ascii
  | windows1252
  deriving DecidableEq, Repr

namespace Codec

/-! ## Names -/

def name : Codec → String
  | utf8 => "utf-8"
  | utf8Marked => "utf-8-sig"
  | utf16 => "utf-16"
  | utf16Little => "utf-16-le"
  | utf16Big => "utf-16-be"
  | utf32 => "utf-32"
  | utf32Little => "utf-32-le"
  | utf32Big => "utf-32-be"
  | latin1 => "latin-1"
  | ascii => "ascii"
  | windows1252 => "cp1252"

/-- Other names for the codecs, as they are compared. -/
def aliases : List (String × Codec) :=
  [("utf8", utf8), ("utf", utf8), ("u8", utf8), ("cp65001", utf8), ("utf8-ucs2", utf8),
    ("utf8-ucs4", utf8), ("utf16", utf16), ("u16", utf16), ("utf-16le", utf16Little),
    ("unicodelittleunmarked", utf16Little), ("utf-16be", utf16Big),
    ("unicodebigunmarked", utf16Big), ("utf32", utf32), ("u32", utf32),
    ("utf-32le", utf32Little), ("utf-32be", utf32Big), ("latin1", latin1), ("latin", latin1),
    ("l1", latin1), ("iso-8859-1", latin1), ("iso8859-1", latin1), ("iso8859", latin1),
    ("8859", latin1), ("cp819", latin1), ("ibm819", latin1), ("csisolatin1", latin1),
    ("iso-8859-1-1987", latin1), ("iso-ir-100", latin1), ("us-ascii", ascii), ("us", ascii),
    ("646", ascii), ("cp367", ascii), ("ibm367", ascii), ("csascii", ascii),
    ("iso646-us", ascii), ("iso-ir-6", ascii), ("ansi-x3-4-1968", ascii),
    ("ansi-x3.4-1986", ascii), ("iso-646.irv-1991", ascii), ("windows-1252", windows1252),
    ("1252", windows1252)]

def all : List Codec :=
  [utf8, utf8Marked, utf16, utf16Little, utf16Big, utf32, utf32Little, utf32Big, latin1, ascii,
    windows1252]

def isSpelling (c : Char) : Bool := c.isAlphanum || c == '.'

def spelled : List Char → List (List Char)
  | [] => [[]]
  | c :: rest =>
    if isSpelling c then match spelled rest with
      | w :: ws => (c.toLower :: w) :: ws
      | [] => [[c.toLower]]
    else [] :: spelled rest

/-- A name as it is compared: small letters, digits and dots, with one hyphen for anything else
between them. -/
def canonical (s : String) : String :=
  String.intercalate "-" (((spelled s.toList).filter fun w => !w.isEmpty).map String.ofList)

/-- The codec of a name. In other names than its own a dot may stand for a hyphen. -/
def ofName? (s : String) : Option Codec :=
  let key := canonical s
  match all.find? (fun c => c.name == key) with
  | some c => some c
  | none => aliases.lookup key <|>
    aliases.lookup (String.ofList (key.toList.map fun c => if c = '.' then '-' else c))

/-! ## Reading -/

def pairs (unit : UInt8 → UInt8 → Nat) : List UInt8 → Option (List Nat)
  | [] => some []
  | [_] => none
  | a :: b :: rest => (pairs unit rest).map (unit a b :: ·)

/-- The characters of units of sixteen bits: a high surrogate needs a low one after it. -/
def ofUnits16 : List Nat → Option (List Char)
  | [] => some []
  | u :: rest =>
    if 0xD800 ≤ u ∧ u < 0xDC00 then
      match rest with
      | v :: rest =>
        if 0xDC00 ≤ v ∧ v < 0xE000 then
          (ofUnits16 rest).map
            (Char.ofNat (0x10000 + (u - 0xD800) * 1024 + (v - 0xDC00)) :: ·)
        else none
      | [] => none
    else if 0xDC00 ≤ u ∧ u < 0xE000 then none
    else (ofUnits16 rest).map (Char.ofNat u :: ·)

def quads (unit : UInt8 → UInt8 → UInt8 → UInt8 → Nat) : List UInt8 → Option (List Nat)
  | [] => some []
  | a :: b :: c :: d :: rest => (quads unit rest).map (unit a b c d :: ·)
  | _ => none

def ofCodePoint? (n : Nat) : Option Char :=
  if h : n.isValidChar then some (Char.ofNatAux n h) else none

/-- The characters of ten octets of Windows 1252 and more; five octets stand for nothing. -/
def windowsTable : List (Option Nat) :=
  [some 0x20AC, none, some 0x201A, some 0x0192, some 0x201E, some 0x2026, some 0x2020,
    some 0x2021, some 0x02C6, some 0x2030, some 0x0160, some 0x2039, some 0x0152, none,
    some 0x017D, none, none, some 0x2018, some 0x2019, some 0x201C, some 0x201D, some 0x2022,
    some 0x2013, some 0x2014, some 0x02DC, some 0x2122, some 0x0161, some 0x203A, some 0x0153,
    none, some 0x017E, some 0x0178]

def windowsChar? (b : UInt8) : Option Char :=
  if 0x80 ≤ b ∧ b < 0xA0 then
    ((windowsTable[b.toNat - 0x80]?).join).map Char.ofNat
  else some (Char.ofNat b.toNat)

def little16 (a b : UInt8) : Nat := a.toNat + 256 * b.toNat

def big16 (a b : UInt8) : Nat := 256 * a.toNat + b.toNat

def little32 (a b c d : UInt8) : Nat := little16 a b + 65536 * little16 c d

def big32 (a b c d : UInt8) : Nat := 65536 * big16 a b + big16 c d

def decode16 (unit : UInt8 → UInt8 → Nat) (bs : List UInt8) : Option (List Char) :=
  pairs unit bs >>= ofUnits16

def decode32 (unit : UInt8 → UInt8 → UInt8 → UInt8 → Nat) (bs : List UInt8) :
    Option (List Char) :=
  quads unit bs >>= fun us => us.mapM ofCodePoint?

/-- The octets without the mark of UTF-8 in front. -/
def unmarked : List UInt8 → List UInt8
  | 0xEF :: 0xBB :: 0xBF :: rest => rest
  | bs => bs

/-- The text that octets are in a codec. Units without an order of their own take it from a mark in
front, and are little endian without one. -/
def decode? (c : Codec) (bs : List UInt8) : Option (List Char) :=
  match c with
  | utf8 => (Utf8.decode bs).toOption
  | utf8Marked => (Utf8.decode (unmarked bs)).toOption
  | utf16 => match bs with
    | 0xFF :: 0xFE :: rest => decode16 little16 rest
    | 0xFE :: 0xFF :: rest => decode16 big16 rest
    | bs => decode16 little16 bs
  | utf16Little => decode16 little16 bs
  | utf16Big => decode16 big16 bs
  | utf32 => match bs with
    | 0xFF :: 0xFE :: 0x00 :: 0x00 :: rest => decode32 little32 rest
    | 0x00 :: 0x00 :: 0xFE :: 0xFF :: rest => decode32 big32 rest
    | bs => decode32 little32 bs
  | utf32Little => decode32 little32 bs
  | utf32Big => decode32 big32 bs
  | latin1 => some (bs.map fun b => Char.ofNat b.toNat)
  | ascii => bs.mapM fun b => if b < 0x80 then some (Char.ofNat b.toNat) else none
  | windows1252 => bs.mapM windowsChar?

def readUtf8 (bs : List UInt8) : Except Failure (List Char) :=
  (Utf8.decode bs).mapError fun (place, f) =>
    .undecodable ⟨utf8.name, bs, place, place + f.covered, f.reason⟩

theorem readUtf8_eq_error {bs : List UInt8} {f : Failure} (h : readUtf8 bs = .error f) :
    ∃ u, f = .undecodable u := by
  unfold readUtf8 at h
  cases hdecode : Utf8.decode bs with
  | ok cs =>
    rw [hdecode] at h
    cases h
  | error e =>
    rw [hdecode] at h
    exact ⟨_, (Except.error.inj h).symm⟩

/-- Reads octets in the codec of a name. No octets are no text in any codec, whether it is known or
not, but a name with a NUL in it is none. -/
def read (l : Locale) (encoding : String) (bs : List UInt8) : Except Failure (List Char) :=
  if encoding.toList.contains '\x00' then .error (.refused .nulInEncoding)
  else if bs.isEmpty then .ok []
  else match ofName? encoding with
    | none => match l.reader? encoding with
      | none => .error (.unknownCodec encoding)
      | some reader => (reader bs).mapError .undecodable
    | some utf8 => readUtf8 bs
    | some c => match c.decode? bs with
      | some cs => .ok cs
      | none => .error (.undecodable ⟨c.name, bs, 0, bs.length, ""⟩)

/-! ## Choosing a codec -/

/-- Byte order marks and their codecs. The marks of 32 bits come first, because the little endian
one begins with that of 16 bits. -/
def marks : List (List UInt8 × Codec) :=
  [([0xFF, 0xFE, 0x00, 0x00], utf32Little), ([0x00, 0x00, 0xFE, 0xFF], utf32Big),
    ([0xEF, 0xBB, 0xBF], utf8Marked), ([0xFF, 0xFE], utf16Little), ([0xFE, 0xFF], utf16Big)]

/-- The first of some names whose codec is known and reads octets, else Latin-1, which reads
anything. -/
def firstToRead (l : Locale) (bs : List UInt8) : List String → Except Failure String
  | [] => .ok latin1.name
  | n :: ns => match read l n bs with
    | .ok _ => .ok n
    | .error (.undecodable _) | .error (.unknownCodec _) => firstToRead l bs ns
    | .error f => .error f

/-- The name of the codec for octets: that of their mark, else UTF-8 if they are that, else the
preferred one if it reads them. -/
def sniff (l : Locale) (bs : List UInt8) : Except Failure String :=
  match marks.find? fun m => m.1.isPrefixOf bs with
  | some m => .ok m.2.name
  | none => firstToRead l bs [utf8.name, if l.preferred = "" then utf8.name else l.preferred]

end Codec

end Concentric
