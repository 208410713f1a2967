import Concentric.Files.Tree

/-! Changes of a file tree. What is written goes where a path leads, through all links; an entry is
made, moved or replaced at the place of the last name itself. A file is emptied before it is written,
and may take only a part of what it is to get. -/

namespace Concentric.FileTree

/-- The file at a place, to be written to: one that is there and may be written, or a new one. -/
def obtain (t : FileTree) (p : Place) : Except FileFault (Nat × FileTree) :=
  match t.entry? p with
  | some .directory => .error .isDirectory
  | some (.link _) => .error .tooManyLinks
  | some (.file n) => if (t.nodes n).isWritable then .ok (n, t) else .error .denied
  | none => if t.mayChange p then .ok (t.freshNode, t.addFile p) else .error .denied

/-- Writes octets to a file after others that are kept. As much as there is room for is written. -/
def put (t : FileTree) (n : Nat) (kept bs : List UInt8) : Except FileFault Unit × FileTree :=
  match t.room with
  | none => (.ok (), t.fill n (kept ++ bs))
  | some room =>
    if bs = [] ∨ kept.length + bs.length ≤ room then (.ok (), t.fill n (kept ++ bs))
    else (.error .noRoom, t.fill n (kept ++ bs.take (room - kept.length)))

def putAt (t : FileTree) (p : Path) (kept : List UInt8 → List UInt8) (bs : List UInt8) :
    Except FileFault Unit × FileTree :=
  match t.place p >>= t.obtain with
  | .error f => (.error f, t)
  | .ok (n, t) => t.put n (kept (t.nodes n).octets) bs

def write (t : FileTree) (p : Path) (bs : List UInt8) : Except FileFault Unit × FileTree :=
  t.putAt p (fun _ => []) bs

def append (t : FileTree) (p : Path) (bs : List UInt8) : Except FileFault Unit × FileTree :=
  t.putAt p id bs

def makeDirectory (t : FileTree) (p : Path) : Except FileFault FileTree := do
  let place ← t.spot p
  match t.entry? place with
  | some _ => throw .taken
  | none => if t.mayChange place then return t.set place .directory else throw .denied

def sameFile : Entry → Entry → Bool
  | .file n, .file k => n == k
  | _, _ => false

/-- Moves a file or a link from one place to another, in place of one that is there. What is the same
file already stays as it is. -/
def move (t : FileTree) (a b : Place) : Except FileFault FileTree :=
  match t.entry? a, t.entry? b with
  | none, _ => .error .notFound
  | some .directory, _ => .error .isDirectory
  | some _, some .directory => .error .isDirectory
  | some e, old =>
    if a = b ∨ old.any (sameFile e) then .ok t
    else if t.mayChange a && t.mayChange b then .ok ((t.erase a).set b e)
    else .error .denied

/-- Moves a file or a link to a path. One back to a directory above is none to move anything to. -/
def rename (t : FileTree) (source target : Path) : Except FileFault FileTree := do
  let a ← t.spot source
  let b ← t.spot target
  if target.names.getLast? = some ".." then throw .busy else t.move a b

end Concentric.FileTree
