import Concentric.Failure
import Concentric.Text.Cut
import Concentric.Octets.Utf8

/-! Paths: names with slashes between them, from the root or from the working directory. Empty
names and single dots say nothing and are left out; double dots stay. -/

namespace Concentric

/-- A path; `root` is empty for one that starts at the working directory. -/
structure Path where
  root : String
  names : List String
  deriving DecidableEq, Repr

namespace Path

/-- Two slashes in front, and no third, are a root of their own. -/
def rootOf : List Char → String
  | '/' :: '/' :: '/' :: _ => "/"
  | ['/', '/'] => "//"
  | '/' :: '/' :: _ => "//"
  | '/' :: _ => "/"
  | _ => ""

def namesOf (cs : List Char) : List String :=
  ((Text.parts '/' cs).map String.ofList).filter fun s => s != "" && s != "."

def ofText (s : String) : Path := ⟨rootOf s.toList, namesOf s.toList⟩

def slashed : List String → String
  | [] => ""
  | [s] => s
  | s :: ss => s ++ "/" ++ slashed ss

/-- The text of a path; one that says nothing is a dot. -/
def text (p : Path) : String :=
  if p.root = "" ∧ p.names = [] then "." else p.root ++ slashed p.names

def child (p : Path) (name : String) : Path := ⟨p.root, p.names ++ [name]⟩

def parent (p : Path) : Path := ⟨p.root, p.names.dropLast⟩

def name (p : Path) : String := p.names.getLast?.getD ""

/-- What follows the last dot of a name, with the dot. A dot in front and a dot at the end
begin no suffix. -/
def suffixOf (name : List Char) : List Char :=
  let tail := name.reverse.takeWhile (· != '.')
  if tail.length = 0 ∨ name.length ≤ tail.length + 1 then [] else '.' :: tail.reverse

def suffix (p : Path) : String := String.ofList (suffixOf p.name.toList)

/-- The path with another suffix; a path without a name has none to change. -/
def withSuffix (p : Path) (suffix : String) : Except Failure Path :=
  match p.names.getLast? with
  | none => .error (.refused (.pathWithoutName p.text))
  | some name =>
    let cs := name.toList
    let stem := cs.take (cs.length - (suffixOf cs).length)
    .ok (p.parent.child (String.ofList stem ++ suffix))

/-- The path with a tilde in front replaced by the home directory; the homes of others are not
known, and a name with a NUL in it is nobody's. -/
def expandHome (p home : Path) : Except Failure Path :=
  match p.root, p.names with
  | "", first :: rest =>
    if first = "~" then .ok ⟨home.root, home.names ++ rest⟩
    else if first.toList.head? = some '~' then
      .error (if first.toList.contains '\x00' then .file .nulInName else .homeless)
    else .ok p
  | _, _ => .ok p

/-! ## As part of a URI -/

def isUnreserved (b : UInt8) : Bool :=
  (b < 0x80 && (Char.ofNat b.toNat).isAlphanum) || b == 0x5F || b == 0x2E || b == 0x2D ||
    b == 0x7E || b == 0x2F

/-- A text in a URI: its octets in UTF-8, in hexadecimal after a percent sign where needed. -/
def percentEncoded (s : String) : String :=
  String.ofList ((Utf8.octets s).flatMap fun b =>
    if isUnreserved b then [Char.ofNat b.toNat]
    else '%' :: (Quoted.hex 2 b.toNat).map Char.toUpper)

end Path

end Concentric
