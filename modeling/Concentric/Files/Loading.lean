import Concentric.Document
import Concentric.Files.Tree
import Concentric.Octets.Codec
import Concentric.Unicode.LowerCase

/-! Texts and documents loaded from files: decoded, without a mark in front, and with one kind of
line break. The suffix of a path tells what its file holds. -/

namespace Concentric

inductive Format
  | markdown
  | text
  | unknown
  deriving DecidableEq, Repr

namespace Format

def name : Format → String
  | markdown => "markdown"
  | text => "text"
  | unknown => "unknown"

def language : Format → String
  | text => "text"
  | _ => "markdown"

def markdownSuffixes : List String := [".md", ".markdown", ".mdown", ".mkd", ".mkdn"]

def textSuffixes : List String := [".txt", ".text"]

def ofPath (p : Path) : Format :=
  let suffix := String.ofList (Unicode.lower p.suffix.toList)
  if markdownSuffixes.contains suffix then markdown
  else if textSuffixes.contains suffix then text
  else unknown

end Format

structure LoadedText where
  path : Path
  text : String
  encoding : String
  format : Format
  deriving Repr

namespace LoadedText

def digest (l : LoadedText) : String := Digest.ofText l.text

/-- Drops one byte order mark in front. -/
def dropMark : List Char → List Char
  | '\uFEFF' :: rest => rest
  | cs => cs

/-- The text of octets: in the encoding that is given, else in the one that they look to be in. -/
def ofOctets (l : Locale) (p : Path) (encoding : String) (bs : List UInt8) :
    Except Failure LoadedText := do
  let encoding ← if encoding = "" then Codec.sniff l bs else pure encoding
  let cs ← Codec.read l encoding bs
  return ⟨p, String.ofList (Lines.normalize (dropMark cs)), encoding, .ofPath p⟩

def load (t : FileTree) (l : Locale) (p : Path) (encoding : String) :
    Except Failure LoadedText := do
  let bs ← (t.read p).mapError .file
  ofOctets l p encoding bs

end LoadedText

namespace Document

def uriPath (names : List String) : String :=
  String.join (names.map fun n => "/" ++ Path.percentEncoded n)

/-- The URI of a file; `base` is what stands in it for the working directory. -/
def fileUri (t : FileTree) (base : String) (p : Place) : String :=
  if t.isBelow p then "file://" ++ base ++ uriPath (p.drop t.workingDirectory.length)
  else "file://" ++ uriPath p

def load (t : FileTree) (base : String) (l : Locale) (p : Path) (encoding : String) :
    Except Failure Document := do
  if !(← (t.isFile p).mapError .file) then throw (.report (.documentNotFound p.text))
  let loaded ← LoadedText.load t l p encoding
  let place ← (t.place p).mapError .file
  return .ofText loaded.text (fileUri t base place) loaded.format.language (.whole 1) loaded.digest

end Document

end Concentric
