import Concentric.Files.Path

/-! File trees: what is stored at which place, and how names lead from place to place. A place is a
list of names from the root. The working directory and those above it are there in any case. Two
places may have the same file, and a link stands for the path that it holds. -/

namespace Concentric

/-- What is stored at a place. Files are told apart by numbers. -/
inductive Entry
  | directory
  | file (node : Nat)
  | link (target : Path)
  deriving DecidableEq, Repr

/-- A file, whatever places it has. -/
structure FileNode where
  octets : List UInt8 := []
  isReadable : Bool := true
  isWritable : Bool := true
  deriving DecidableEq, Repr

/-- The names that lead from the root to a place. -/
abbrev Place := List String

/-- A tree of files. `mayChange` says at which places entries may be added, replaced and taken away,
and `room` how many octets at most a file may get. -/
structure FileTree where
  workingDirectory : Place
  entries : List (Place × Entry) := []
  nodes : Nat → FileNode := fun _ => {}
  mayChange : Place → Bool := fun _ => true
  room : Option Nat := none

namespace FileTree

/-! ## Entries -/

/-- What is stored at a place, apart from the directories that are there in any case. -/
def get? (t : FileTree) (p : Place) : Option Entry := t.entries.lookup p

def set (t : FileTree) (p : Place) (e : Entry) : FileTree :=
  { t with entries := (p, e) :: t.entries.filter fun x => x.1 != p }

def erase (t : FileTree) (p : Place) : FileTree :=
  { t with entries := t.entries.filter fun x => x.1 != p }

theorem lookup_filter {p other : Place} (es : List (Place × Entry)) (h : other ≠ p) :
    (es.filter fun x => x.1 != p).lookup other = es.lookup other := by
  induction es with
  | nil => rfl
  | cons e es ih =>
    obtain ⟨k, v⟩ := e
    by_cases hk : k = p
    · subst hk
      have : (other == k) = false := by simpa using h
      simp [List.lookup_cons, this, ih]
    · by_cases ho : other = k
      · subst ho
        simp [hk]
      · have : (other == k) = false := by simpa using ho
        simp [List.lookup_cons, hk, this, ih]

theorem get?_set (t : FileTree) (p other : Place) (e : Entry) :
    (t.set p e).get? other = if other = p then some e else t.get? other := by
  unfold get? set
  split
  · next h => simp [h]
  · next h =>
    have : (other == p) = false := by simpa using h
    simp [List.lookup_cons, this, lookup_filter _ h]

theorem lookup_filter_self {p : Place} (es : List (Place × Entry)) :
    (es.filter fun x => x.1 != p).lookup p = none := by
  induction es with
  | nil => rfl
  | cons e es ih =>
    obtain ⟨k, v⟩ := e
    by_cases hk : k = p
    · simp [hk, ih]
    · have : (p == k) = false := by simpa using Ne.symm hk
      simp [List.lookup_cons, hk, this, ih]

theorem get?_erase (t : FileTree) (p other : Place) :
    (t.erase p).get? other = if other = p then none else t.get? other := by
  unfold get? erase
  split
  · next h => simp [h, lookup_filter_self]
  · next h => simp [lookup_filter _ h]

def isGiven (t : FileTree) (p : Place) : Bool := p.isPrefixOf t.workingDirectory

def isBelow (t : FileTree) (p : Place) : Bool :=
  t.workingDirectory.isPrefixOf p && !t.isGiven p

def entry? (t : FileTree) (p : Place) : Option Entry :=
  if t.isGiven p then some .directory else t.get? p

/-! ## Files -/

def file? (t : FileTree) (p : Place) : Option FileNode :=
  match t.entry? p with
  | some (.file n) => some (t.nodes n)
  | _ => none

/-- A number above that of the file. -/
def above : Entry → Nat
  | .file n => n + 1
  | _ => 0

def freshNode (t : FileTree) : Nat := t.entries.foldr (fun x n => max (above x.2) n) 0

theorem above_le_foldr {es : List (Place × Entry)} {p : Place} {e : Entry}
    (h : es.lookup p = some e) : above e ≤ es.foldr (fun x n => max (above x.2) n) 0 := by
  induction es with
  | nil => cases h
  | cons x es ih =>
    obtain ⟨k, v⟩ := x
    simp only [List.lookup_cons, List.foldr_cons] at h ⊢
    split at h
    · obtain rfl := Option.some.inj h
      exact Nat.le_max_left _ _
    · exact Nat.le_trans (ih h) (Nat.le_max_right _ _)

theorem ne_freshNode {t : FileTree} {p : Place} {n : Nat} (h : t.entry? p = some (.file n)) :
    n ≠ t.freshNode := by
  unfold entry? at h
  split at h
  · cases h
  · exact Nat.ne_of_lt (above_le_foldr h)

def fill (t : FileTree) (n : Nat) (bs : List UInt8) : FileTree :=
  { t with nodes := fun k => if k = n then { t.nodes n with octets := bs } else t.nodes k }

def addFile (t : FileTree) (p : Place) : FileTree :=
  { t.set p (.file t.freshNode) with
    nodes := fun k => if k = t.freshNode then {} else t.nodes k }

def withFile (t : FileTree) (p : Place) (bs : List UInt8) : FileTree :=
  (t.addFile p).fill t.freshNode bs

/-- A tree with one file, in a working directory. -/
def oneFile (name : String) (bs : List UInt8) : FileTree :=
  withFile { workingDirectory := ["work"] } ["work", name] bs

/-! ## Following names -/

def nameLimit : Nat := 255

def pathLimit : Nat := 4095

def linkLimit : Nat := 40

/-- The place of a name in a directory, whether anything is stored there or not. -/
def enter (t : FileTree) (p : Place) (name : String) : Except FileFault Place :=
  match t.entry? p with
  | none => .error .notFound
  | some .directory =>
    if nameLimit < name.utf8ByteSize then .error .nameTooLong
    else .ok (if name = ".." then p.dropLast else p ++ [name])
  | some _ => .error .notDirectory

/-- How far names lead without a link: to a place, or to the first link on the way, with the names
that are left. -/
inductive Leg
  | arrived (p : Place)
  | atLink (p : Place) (target : Path) (rest : List String)

def walk (t : FileTree) (p : Place) : List String → Except FileFault Leg
  | [] => .ok (.arrived p)
  | name :: rest =>
    match t.enter p name with
    | .error f => .error f
    | .ok q => match t.entry? q with
      | some (.link target) => .ok (.atLink q target rest)
      | _ => t.walk q rest

/-- Where the names of a path start, if it is met in a directory. -/
def start (p : Path) (directory : Place) : Place := if p.root = "" then directory else []

/-- Follows names from a place, and so many links on the way. -/
def follow (t : FileTree) (links : Nat) (p : Place) (names : List String) :
    Except FileFault Place :=
  match t.walk p names with
  | .error f => .error f
  | .ok (.arrived q) => .ok q
  | .ok (.atLink q target rest) => match links with
    | 0 => .error .tooManyLinks
    | links + 1 => t.follow links (start target q.dropLast) (target.names ++ rest)

/-- A name with a NUL in it is refused before anything else, and a path that is too long before any
of its names is looked at. -/
def checkPath (p : Path) : Except FileFault Unit :=
  if p.names.any fun n => n.toList.contains '\x00' then .error .nulInName
  else if pathLimit < p.text.utf8ByteSize then .error .nameTooLong
  else .ok ()

/-- The place that a path leads to, whether anything is stored there or not. -/
def place (t : FileTree) (p : Path) : Except FileFault Place := do
  checkPath p
  t.follow linkLimit (start p t.workingDirectory) p.names

/-- The place of the last name of a path, which is not followed if there is a link. -/
def spot (t : FileTree) (p : Path) : Except FileFault Place := do
  checkPath p
  let directory ← t.follow linkLimit (start p t.workingDirectory) p.names.dropLast
  match p.names.getLast? with
  | none => return directory
  | some name => t.enter directory name

/-! ## Reading -/

def lookup (t : FileTree) (p : Path) : Except FileFault Entry := do
  match t.entry? (← t.place p) with
  | some e => return e
  | none => throw .notFound

/-- There is a file at a path; what is too long to be looked up is neither there nor missing. -/
def isFile (t : FileTree) (p : Path) : Except FileFault Bool :=
  match t.lookup p with
  | .ok (.file _) => .ok true
  | .error .nameTooLong => .error .nameTooLong
  | _ => .ok false

def isDirectory (t : FileTree) (p : Path) : Bool :=
  match t.lookup p with
  | .ok .directory => true
  | _ => false

def read (t : FileTree) (p : Path) : Except FileFault (List UInt8) := do
  match ← t.lookup p with
  | .file n => if (t.nodes n).isReadable then return (t.nodes n).octets else throw .denied
  | .directory => throw .isDirectory
  | .link _ => throw .tooManyLinks

/-- What lies below the working directory, by paths from there and in the order of these. -/
def listing (t : FileTree) : List String :=
  ((t.entries.filter fun e => t.isBelow e.1).map fun e =>
    Path.slashed (e.1.drop t.workingDirectory.length)).mergeSort fun a b => !decide (b < a)

end FileTree

end Concentric
